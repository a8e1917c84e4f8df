import Islands.Text.Blank
import Islands.Markup.Tree

/-!
# Leaving out attributes

Markup is carried over as it was written, less some attributes and the blanks in front of them.

* `Attribute.removal`: the part of the text that goes with an attribute.
* `partWithout`: a part of the text without some ranges.
-/

namespace Islands

open Markup

/-- The range of an attribute and of the blanks in front of it. -/
def Markup.Attribute.removal (template : List Char) (a : Attribute) : Span :=
  let blanks := (takeBytes a.span.start template).reverse.takeWhile isBlank
  ⟨a.span.start - byteLength blanks, a.span.stop⟩

/-- The text from `start` to `stop` without some ranges, given in the order of their starts. A
range that begins before `start` or goes on behind `stop` is not left out. -/
def cutAround (cs : List Char) (start stop : Nat) : List Span → List Char
  | [] => Span.cut ⟨start, stop⟩ cs
  | r :: rs =>
    if r.start < start ∨ stop < r.stop then cutAround cs start stop rs
    else Span.cut ⟨start, r.start⟩ cs ++ cutAround cs r.stop stop rs

/-- A part of a template without some ranges. -/
def partWithout (template : List Char) (part : Span) (removals : List Span) : String :=
  String.ofList (cutAround template part.start part.stop
    (removals.mergeSort fun a b => a.start ≤ b.start))

/-- Whether an attribute is a condition; conditions move to what takes the element's place. -/
def isCondition (name : String) : Bool :=
  name == "v-if" || name == "v-else-if" || name == "v-else"

/-- The conditions of an element, as written, each after a space. -/
def liftedConditions (template : List Char) (s : Shell) : String :=
  String.join ((s.attributes.filter (isCondition ·.name)).map (" " ++ ·.span.text template))

end Islands
