import Islands.Text.Span

/-!
# Lines and columns

A source map counts lines and columns from zero. A line ends with a line feed, a carriage return,
or both in this order; columns count UTF-16 code units.

* `units16`: the number of code units of a text.
* `linesWithin`: the lines of a text, each with the offset at which it starts.
* `columnAt`: the column of an offset on its line.
* `LineIndex.position`: the line and column of an offset, found by bisection.
-/

namespace Islands

/-! ## Positions -/

/-- A line and a column, both counted from zero. -/
structure Position where
  line : Nat
  column : Nat
deriving DecidableEq, Repr, Inhabited

/-- The number of UTF-16 code units of a text. -/
def units16 : List Char → Nat
  | [] => 0
  | c :: cs => (if c.toNat < 0x10000 then 1 else 2) + units16 cs

/-! ## Lines -/

/-- The start of a line, and the text from there to the end of the whole. -/
structure LineStart where
  offset : Nat
  rest : List Char
deriving DecidableEq, Repr, Inhabited

/-- The lines that start behind `offset` in a text that starts there. -/
def linesAfter (offset : Nat) : List Char → List LineStart
  | [] => []
  | '\r' :: '\n' :: cs => ⟨offset + 2, cs⟩ :: linesAfter (offset + 2) cs
  | c :: cs =>
    if c = '\n' ∨ c = '\r' then ⟨offset + 1, cs⟩ :: linesAfter (offset + 1) cs
    else linesAfter (offset + c.utf8Size) cs

/-- The lines of a text. -/
def linesWithin (cs : List Char) : List LineStart := ⟨0, cs⟩ :: linesAfter 0 cs

/-- Whether all characters of a text have one byte. -/
def isAscii (cs : List Char) : Bool := cs.all fun c => c.toNat < 128

/-- The column of an offset that is `n` bytes behind the start of its line, given the text from
there on. The bytes of ASCII text are its code units; in any other text these are counted, and an
offset inside a character has the column zero. -/
def columnAt (n : Nat) (cs : List Char) : Nat :=
  let part := takeBytes n cs
  if isAscii part then byteLength part else if isBoundary n cs then units16 part else 0

/-- The table of the lines of a text, and its length in bytes. -/
structure LineIndex where
  lines : Array LineStart
  length : Nat

namespace LineIndex

/-- The table of a text. -/
def ofText (cs : List Char) : LineIndex := ⟨(linesWithin cs).toArray, byteLength cs⟩

/-- What the search for an offset finds: the line that starts there, or, if none does, how many
lines start in front of it. -/
inductive Found where
  | start (line : Nat)
  | between (lines : Nat)
deriving DecidableEq, Repr

/-- Searches the lines from `lo` up to `hi` for one that starts at `offset`, given that the lines
before them start in front of it and the ones from `hi` on behind it: the range is halved. -/
def search (lines : Array LineStart) (offset lo hi : Nat) : Found :=
  if lo < hi then
    let middle := (lo + hi) / 2
    let start := (lines.getD middle default).offset
    if start = offset then .start middle
    else if start < offset then search lines offset (middle + 1) hi
    else search lines offset lo middle
  else .between lo
termination_by hi - lo

/-- The line that an offset is in. -/
def line (x : LineIndex) (offset : Nat) : Nat :=
  match search x.lines offset 0 x.lines.size with
  | .start line => line
  | .between lines => lines - 1

/-- The line and column of an offset; one behind the text counts as its end. -/
def position (x : LineIndex) (offset : Nat) : Position :=
  let line := x.line offset
  let start := x.lines.getD line default
  ⟨line, columnAt (min offset x.length - start.offset) start.rest⟩

end LineIndex

end Islands
