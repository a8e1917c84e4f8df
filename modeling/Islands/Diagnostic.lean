import Islands.Text.Span

/-!
# Messages to the user

* `lineColumn`: the line and column of an offset, as an editor shows them.
* `Diagnostic`, `Diagnostic.Label`: a message and the places it is about.
* `Diagnostic.warningAt`, `Diagnostic.ofReport`: messages from a place in the file, and from a
  report about a part of it.
-/

namespace Islands

/-- The line, counted from one, and the column, counted in characters from zero, of an offset in a
text of which `line` and `column` is the start. Only a line feed ends a line, and an offset inside
a character is taken for the one after it. -/
def lineColumn (line column offset : Nat) : List Char → Nat × Nat
  | [] => (line, column)
  | c :: cs =>
    if offset = 0 then (line, column)
    else if c = '\n' then lineColumn (line + 1) 0 (offset - c.utf8Size) cs
    else lineColumn line (column + 1) (offset - c.utf8Size) cs

/-- How grave a message is. -/
inductive Severity
  | error
  | warning
  | hint
deriving DecidableEq, Repr

/-- A remark about a place in a file: its span, and the line and column where it starts. -/
structure Diagnostic.Label where
  text : Option String
  span : Span
  line : Nat
  column : Nat
deriving DecidableEq, Repr

/-- The remark about a span of a file. -/
def Diagnostic.Label.at (source : List Char) (text : Option String) (span : Span) :
    Diagnostic.Label :=
  let place := lineColumn 1 0 span.start source
  ⟨text, span, place.1, place.2⟩

/-- A message, a hint how to mend what it is about, and the places it is about. -/
structure Diagnostic where
  severity : Severity
  text : String
  hint : String
  labels : List Diagnostic.Label
deriving DecidableEq, Repr

/-- What a reader of a part of a file reports; its spans are places in that part. -/
structure Report where
  severity : Severity
  text : String
  help : Option String
  labels : List (Option String × Span)
deriving DecidableEq, Repr

namespace Diagnostic

/-- A warning about one place. -/
def warningAt (source : List Char) (text hint : String) (span : Span) : Diagnostic :=
  ⟨.warning, text, hint, [Label.at source none span]⟩

/-- A report about the part of a file that starts at `base`. -/
def ofReport (source : List Char) (base : Nat) (r : Report) : Diagnostic :=
  ⟨r.severity, r.text, r.help.getD "",
    r.labels.map fun l => Label.at source l.1 (l.2.shift base)⟩

/-- Whether the message is an error. -/
def isError (d : Diagnostic) : Bool := d.severity == .error

end Diagnostic

end Islands
