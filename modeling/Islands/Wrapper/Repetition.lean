import Islands.Text.Blank
import Islands.Text.Search

/-!
# Repetitions

The value of `v-for` is a name for the items, the word `in` or `of`, and an expression. The word
has to stand between blanks, outside brackets and quotation marks.

* `splitClause`: the parts before and after the word.
* `Repetition.ofDirective?`: the name of the items and the iterated expression.
-/

namespace Islands

/-- What follows the word `in` or `of` at the start of a text, if a blank follows it. -/
def dropClauseWord? (cs : List Char) : Option (List Char) :=
  match (dropWord? ['i', 'n'] cs).or (dropWord? ['o', 'f'] cs) with
  | some (c :: rest) => if isBlank c then some (c :: rest) else none
  | _ => none

/-- Whether a character is a quotation mark of an expression. -/
def isQuoteMark (c : Char) : Bool := c == '"' || c == '\'' || c == '`'

/-- How a character changes the depth of brackets. -/
def bracketStep (c : Char) : Int :=
  if c = '(' ∨ c = '[' ∨ c = '\x7b' then 1
  else if c = ')' ∨ c = ']' ∨ c = '\x7d' then -1
  else 0

/-- The parts of a text around the first `in` or `of` that stands between blanks, at bracket depth
zero and outside quotation marks; the blank before the word belongs to neither part. `depth` and
`mark` are the depth reached and the quotation mark that is open. -/
def splitClause (depth : Int) (mark : Option Char) : List Char → Option (List Char × List Char)
  | [] => none
  | c :: cs =>
    match mark with
    | some q => (splitClause depth (if c == q then none else some q) cs).map (prepend [c])
    | none =>
      if isQuoteMark c then (splitClause depth (some c) cs).map (prepend [c])
      else
        match if depth = 0 ∧ isBlank c then dropClauseWord? cs else none with
        | some rest => some ([], rest)
        | none => (splitClause (depth + bracketStep c) none cs).map (prepend [c])

/-- A repetition: the value of the directive as written, the name or pattern for the items, and the
iterated expression. -/
structure Repetition where
  directive : String
  item : String
  iterable : String
deriving DecidableEq, Repr

namespace Repetition

/-- The repetition that the value of a directive describes. There is none if one of its sides is
blank. -/
def ofDirective? (directive : String) : Option Repetition :=
  match splitClause 0 none directive.toList with
  | none => none
  | some (before, after) =>
    let item := trimBy isWhite before
    let iterable := trimBy isWhite after
    if item.isEmpty || iterable.isEmpty then none
    else some ⟨directive, String.ofList item, String.ofList iterable⟩

/-- The name of the items as the parameters of a function. -/
def parameters (r : Repetition) : String :=
  match r.item.toList with
  | '(' :: _ => r.item
  | _ => "(" ++ r.item ++ ")"

end Repetition

end Islands
