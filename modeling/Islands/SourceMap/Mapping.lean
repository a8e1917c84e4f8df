import Islands.Text.Base64
import Islands.SourceMap.LineIndex

/-!
# Mappings as text

A mapping says which position of the source a position of the output comes from. Mappings are
written as differences to the ones before, in a base of 32 with a continuation bit.

* `vlq`: a signed number in that form.
* `mappingsText`: a list of mappings, `;` for each step to the next line of output.
-/

namespace Islands

/-- A position of the output and the position of the source that it comes from. -/
structure Mapping where
  generated : Position
  source : Position
deriving DecidableEq, Repr

/-! ## Numbers -/

/-- The digits of a number, the lowest first; all but the last one carry the continuation bit. -/
def vlqDigits (n : Nat) : List Char :=
  if n < 32 then [sextet n] else sextet (32 + n % 32) :: vlqDigits (n / 32)
termination_by n

/-- A signed number; the lowest bit is the sign. -/
def vlq (n : Int) : List Char := vlqDigits (2 * n.natAbs + if n < 0 then 1 else 0)

/-- The difference of two numbers. -/
def vlqStep (old new : Nat) : List Char := vlq ((new : Int) - (old : Int))

/-! ## Mappings -/

/-- What separates a mapping from the one before it. -/
def separator (first : Bool) (old new : Mapping) : List Char :=
  if old.generated.line < new.generated.line then
    List.replicate (new.generated.line - old.generated.line) ';'
  else if first then [] else [',']

/-- A mapping, written after the mapping `old`. The column of the output starts anew on every
line; there is one source, so the step between sources is zero. -/
def mappingText (old new : Mapping) : List Char :=
  let column := if old.generated.line < new.generated.line then 0 else old.generated.column
  vlqStep column new.generated.column ++ (vlq 0 ++
    (vlqStep old.source.line new.source.line ++ vlqStep old.source.column new.source.column))

/-- Mappings, written after the mapping `old`; `first` says that there is none before them. -/
def mappingsFrom (first : Bool) (old : Mapping) : List Mapping → List Char
  | [] => []
  | m :: ms => separator first old m ++ (mappingText old m ++ mappingsFrom false m ms)

/-- The text of a list of mappings. -/
def mappingsText (ms : List Mapping) : String :=
  String.ofList (mappingsFrom true ⟨⟨0, 0⟩, ⟨0, 0⟩⟩ ms)

end Islands
