import Islands.Wrapper.Repetition

/-!
# Brackets and literals of an expression

An expression is read from left to right. What has been read leaves brackets that still have to be
closed, and maybe a string literal or a template, which goes on to its quotation mark; behind a
backslash no mark closes it. A template is read like a string: expressions in it are not looked at,
and neither are line ends in any literal.

* `Reading`, `Reading.behind`: what has been read, and one more character.
* `IsBalanced`: the brackets of a text match and its literals are closed.
* `escapesMark`: a literal holds its own quotation mark, behind a backslash.
-/

namespace Islands.Script

/-- Where a text is with respect to literals. -/
inductive LiteralState
  | outside
  | inside (mark : Char)
  /-- Behind a backslash. -/
  | escaped (mark : Char)
deriving DecidableEq, Repr

/-- The quotation mark of the literal that is open. -/
def LiteralState.mark? : LiteralState → Option Char
  | outside => none
  | inside mark => some mark
  | escaped mark => some mark

/-- What has been read of an expression: the brackets that will close those that are open, the
innermost one first, and where the text is with respect to literals. -/
structure Reading where
  awaited : List Char
  literal : LiteralState
deriving DecidableEq, Repr

/-- The bracket that closes an opening one. -/
def closingBracket? (c : Char) : Option Char :=
  match c with
  | '(' => some ')'
  | '[' => some ']'
  | '\x7b' => some '\x7d'
  | _ => none

/-- Whether a character is a closing bracket. -/
def isClosingBracket (c : Char) : Bool := c == ')' || c == ']' || c == '\x7d'

namespace Reading

/-- Outside brackets and literals. -/
def outside : Reading := ⟨[], .outside⟩

/-- What has been read with one more character. A bracket that closes none fits nowhere. -/
def behind (r : Reading) (c : Char) : Option Reading :=
  match r.literal with
  | .escaped mark => some ⟨r.awaited, .inside mark⟩
  | .inside mark =>
    some ⟨r.awaited, if c = mark then .outside else if c = '\\' then .escaped mark
      else .inside mark⟩
  | .outside =>
    if isQuoteMark c then some ⟨r.awaited, .inside c⟩
    else
      match closingBracket? c with
      | some closing => some ⟨closing :: r.awaited, .outside⟩
      | none =>
        if isClosingBracket c then
          match r.awaited with
          | closing :: outer => if c = closing then some ⟨outer, .outside⟩ else none
          | [] => none
        else some r

/-- What has been read with some more text. -/
def through (r : Reading) (cs : List Char) : Option Reading := cs.foldlM behind r

theorem through_append (r : Reading) (a b : List Char) :
    r.through (a ++ b) = (r.through a).bind (through · b) := List.foldlM_append

end Reading

/-- The brackets of a text match, and its literals are closed. -/
def IsBalanced (cs : List Char) : Prop := Reading.outside.through cs = some .outside

instance (cs : List Char) : Decidable (IsBalanced cs) := inferInstanceAs (Decidable (_ = _))

/-- Whether a literal in a text that is read behind `r` holds its own quotation mark: a backslash
stands in front of the mark, so it does not close the literal. -/
def escapesMark (r : Reading) (cs : List Char) : Bool :=
  match cs with
  | [] => false
  | c :: cs =>
    r.literal == .escaped c ||
      match r.behind c with
      | some r => escapesMark r cs
      | none => false

end Islands.Script
