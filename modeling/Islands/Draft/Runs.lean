import Islands.Draft.Basic

/-!
# Rendering of edits

The edited text is a sequence of runs: stretches of the source that were kept, line by line, and
texts that were put in. A run that comes from a place of the source knows that place.

* `Draft.runs`: the runs of the edited text.
* `Draft.text`: the edited text.
-/

namespace Islands

/-- A stretch of output. `origin` is the offset in the source that it comes from: for a kept line
its own, for a patch the start of what it replaces. -/
structure Run where
  origin : Option Nat
  text : List Char
deriving DecidableEq, Repr

/-- The lines of a text, each with the line feed that ends it. -/
def linesOf : List Char → List (List Char)
  | [] => []
  | c :: cs =>
    if c = '\n' then [c] :: linesOf cs
    else
      match linesOf cs with
      | [] => [[c]]
      | l :: ls => (c :: l) :: ls

/-- The runs of kept lines, the first of which is at `offset`. -/
def keptRuns (offset : Nat) : List (List Char) → List Run
  | [] => []
  | l :: ls => ⟨some offset, l⟩ :: keptRuns (offset + byteLength l) ls

/-- Whether an insertion goes before another one: by offset, then by side. -/
def Insertion.before (a b : Insertion) : Bool :=
  a.offset < b.offset || (a.offset == b.offset && (a.side == .left || b.side == .right))

/-- The run of an insertion. -/
def Insertion.run (i : Insertion) : Run := ⟨none, i.text.toList⟩

/-- The run of a patch. -/
def Patch.run (p : Patch) : Run := ⟨some p.range.start, p.text.toList⟩

/-- The runs of a stretch of the source that starts at `start`, with insertions among it. -/
def stretchRuns (start : Nat) (cs : List Char) : List Insertion → List Run
  | [] => keptRuns start (linesOf cs)
  | i :: is =>
    keptRuns start (linesOf (takeBytes (i.offset - start) cs)) ++
      i.run :: stretchRuns i.offset (dropBytes (i.offset - start) cs) is

/-- The runs of the source from `start` on, given the insertions and patches that are left.
Insertions inside a patch are dropped, those at its ends are kept. -/
def patchedRuns (start : Nat) (cs : List Char) (insertions : List Insertion) :
    List Patch → List Run
  | [] => stretchRuns start cs insertions
  | p :: ps =>
    stretchRuns start (takeBytes (p.range.start - start) cs)
        (insertions.takeWhile (·.offset ≤ p.range.start)) ++
      p.run :: patchedRuns p.range.stop (dropBytes (p.range.stop - start) cs)
        ((insertions.dropWhile (·.offset ≤ p.range.start)).dropWhile (·.offset < p.range.stop)) ps

namespace Draft

/-- The insertions in the order they are rendered in; equals stay in the order they were made. -/
def sortedInsertions (d : Draft) : List Insertion := d.insertions.mergeSort Insertion.before

/-- The runs of the edited text. -/
def runs (d : Draft) : List Run :=
  d.fronts.reverse.map (fun p => ⟨none, p.toList⟩) ++
    patchedRuns 0 d.source d.sortedInsertions d.patches

/-- The edited text. -/
def text (d : Draft) : String := String.ofList (d.runs.flatMap Run.text)

end Draft

end Islands
