import Islands.Text.Span

/-!
# Why markup cannot be read

* `ParseError`: the causes, each with the places that explain it.
* `ParseError.message`, `help?`, `labels`: the wording.
* `ParseError.shift`: the same cause in a text with more in front; `labels_shift` says that
  exactly the labels move.
-/

namespace Islands.Markup

/-- A place in the markup and what is to be said about it. -/
structure Label where
  text : String
  span : Span
deriving DecidableEq, Repr

/-- The same remark in a text with `n` more bytes in front. -/
def Label.shift (n : Nat) (l : Label) : Label := ⟨l.text, l.span.shift n⟩

/-- A cause of failure; a `start` is the offset of the markup that has no end. -/
inductive ParseError
  | unterminatedComment (start : Nat)
  | unterminatedDeclaration (start : Nat)
  | malformedClosingTag (name : String) (span : Span)
  | unterminatedTag (name : String) (start : Nat)
  | unterminatedValue (owner : String) (start : Nat)
  | unclosedElement (name : String) (openTag : Span)
  | mismatchedClosingTag (name : String) (closeTag : Span) (openName : String) (openTag : Span)
  | unexpectedClosingTag (name : String) (closeTag : Span)
deriving DecidableEq, Repr

namespace ParseError

/-- The same cause in a text with `n` more bytes in front. -/
def shift (n : Nat) : ParseError → ParseError
  | unterminatedComment start => unterminatedComment (n + start)
  | unterminatedDeclaration start => unterminatedDeclaration (n + start)
  | malformedClosingTag name span => malformedClosingTag name (span.shift n)
  | unterminatedTag name start => unterminatedTag name (n + start)
  | unterminatedValue owner start => unterminatedValue owner (n + start)
  | unclosedElement name openTag => unclosedElement name (openTag.shift n)
  | mismatchedClosingTag name closeTag openName openTag =>
    mismatchedClosingTag name (closeTag.shift n) openName (openTag.shift n)
  | unexpectedClosingTag name closeTag => unexpectedClosingTag name (closeTag.shift n)

/-- What went wrong. -/
def message : ParseError → String
  | unterminatedComment _ => "Unterminated comment"
  | unterminatedDeclaration _ => "Unterminated declaration"
  | malformedClosingTag name _ => "Malformed closing tag `</" ++ name ++ "`"
  | unterminatedTag name _ => "Unterminated tag `<" ++ name ++ "`"
  | unterminatedValue owner _ => "Unterminated value for attribute `" ++ owner ++ "`"
  | unclosedElement name _ => "Element `<" ++ name ++ ">` is missing its end tag"
  | mismatchedClosingTag name _ openName _ =>
    "Closing tag `</" ++ name ++ ">` does not match the open element `<" ++ openName ++ ">`"
  | unexpectedClosingTag name _ => "Unexpected closing tag `</" ++ name ++ ">`"

/-- How to mend it, where there is one way. -/
def help? : ParseError → Option String
  | unterminatedTag _ _ => some "Add `>` to close the opening tag"
  | unclosedElement name _ => some ("Add `</" ++ name ++ ">` or make the element self-closing")
  | _ => none

/-- The places to look at. -/
def labels : ParseError → List Label
  | unterminatedComment start => [⟨"comment starts here", ⟨start, start + 4⟩⟩]
  | unterminatedDeclaration start => [⟨"declaration starts here", ⟨start, start + 2⟩⟩]
  | malformedClosingTag _ span => [⟨"closing tag starts here", span⟩]
  | unterminatedTag name start =>
    [⟨"tag starts here", ⟨start, start + (1 + byteLength name.toList)⟩⟩]
  | unterminatedValue _ start => [⟨"value starts here", ⟨start, start + 1⟩⟩]
  | unclosedElement _ openTag => [⟨"opened here", openTag⟩]
  | mismatchedClosingTag _ closeTag _ openTag =>
    [⟨"unexpected closing tag", closeTag⟩, ⟨"open element", openTag⟩]
  | unexpectedClosingTag _ closeTag => [⟨"no element is open", closeTag⟩]

@[simp] theorem message_shift (n : Nat) (e : ParseError) : (e.shift n).message = e.message := by
  cases e <;> rfl

@[simp] theorem help?_shift (n : Nat) (e : ParseError) : (e.shift n).help? = e.help? := by
  cases e <;> rfl

@[simp] theorem labels_shift (n : Nat) (e : ParseError) :
    (e.shift n).labels = e.labels.map (Label.shift n) := by
  cases e <;> simp [shift, labels, Label.shift, Span.shift, Nat.add_assoc]

theorem shift_shift (m n : Nat) (e : ParseError) : (e.shift n).shift m = e.shift (m + n) := by
  cases e <;> simp [shift, Span.shift_shift, Nat.add_assoc]

end ParseError

end Islands.Markup
