import Islands.Text.Span

/-!
# Edits of a text

Edits are kept apart from the text they are made to, and refer to its offsets. They are applied
only when the result is rendered.

* `Draft`: a source text and the edits made to it.
* `addInFront`, `insertAt`, `replaceRange`: the edits; a failed one gives no new draft.
* `EditFault`: why an edit is refused.
-/

namespace Islands

/-- Why an edit is refused. -/
inductive EditFault
  | outOfBounds (range : Span) (length : Nat)
  | notBoundary (offset : Nat)
  | emptyRange (offset : Nat)
  | overlap (range other : Span)
deriving DecidableEq, Repr

namespace EditFault

/-- A range, as messages show it. -/
def rangeText (s : Span) : String := toString s.start ++ ".." ++ toString s.stop

/-- The message about a refused edit. -/
def message : EditFault → String
  | outOfBounds range length =>
    "edit range " ++ rangeText range ++ " is outside the source (length " ++ toString length ++ ")"
  | notBoundary offset => "edit offset " ++ toString offset ++ " is not on a character boundary"
  | emptyRange offset => "cannot overwrite the empty range at " ++ toString offset
  | overlap range other =>
    "overwrite " ++ rangeText range ++ " partially overlaps the overwrite " ++ rangeText other

end EditFault

/-! ## Edits -/

/-- The neighbour that an insertion belongs to. Where both kinds stand at one offset, those that
belong to the left come first. -/
inductive Side
  | left
  | right
deriving DecidableEq, Repr

/-- A text put in at an offset. -/
structure Insertion where
  offset : Nat
  side : Side
  text : String
deriving DecidableEq, Repr

/-- A text put in place of a range. -/
structure Patch where
  range : Span
  text : String
deriving DecidableEq, Repr

/-- A source text and the edits made to it: texts put in front, the latest last, insertions in the
order they were made, and patches in the order of their ranges. -/
structure Draft where
  source : List Char
  fronts : List String := []
  insertions : List Insertion := []
  patches : List Patch := []
deriving DecidableEq, Repr

namespace Span

/-- Whether two ranges have no byte in common. -/
def isDisjoint (a b : Span) : Bool := a.stop ≤ b.start || b.stop ≤ a.start

/-- Whether the range `a` lies within `b`. -/
def isWithin (a b : Span) : Bool := b.start ≤ a.start && a.stop ≤ b.stop

variable {a b : Span}

theorem isDisjoint_iff : a.isDisjoint b = true ↔ a.stop ≤ b.start ∨ b.stop ≤ a.start := by
  rw [isDisjoint, Bool.or_eq_true, decide_eq_true_eq, decide_eq_true_eq]

theorem isDisjoint_symm (h : a.isDisjoint b = true) : b.isDisjoint a = true :=
  isDisjoint_iff.2 (isDisjoint_iff.1 h).symm

theorem isWithin_iff : a.isWithin b = true ↔ b.start ≤ a.start ∧ a.stop ≤ b.stop := by
  rw [isWithin, Bool.and_eq_true, decide_eq_true_eq, decide_eq_true_eq]

theorem isWithin_refl (a : Span) : a.isWithin a = true :=
  isWithin_iff.2 ⟨Nat.le_refl _, Nat.le_refl _⟩

end Span

namespace Draft

/-- A text without edits. -/
def ofSource (source : List Char) : Draft := { source }

/-- The length of the source in bytes. -/
def length (d : Draft) : Nat := byteLength d.source

/-- Whether any edit was made. -/
def isEdited (d : Draft) : Bool :=
  !(d.fronts.isEmpty && d.insertions.isEmpty && d.patches.isEmpty)

/-- Whether a range may be edited: it is in the source and cuts no character. -/
def check (d : Draft) (range : Span) : Except EditFault Unit :=
  if range.stop < range.start ∨ d.length < range.stop then .error (.outOfBounds range d.length)
  else if !isBoundary range.start d.source then .error (.notBoundary range.start)
  else if !isBoundary range.stop d.source then .error (.notBoundary range.stop)
  else .ok ()

/-- Puts a text in front of everything, earlier such texts included. -/
def addInFront (d : Draft) (text : String) : Draft :=
  { d with fronts := d.fronts ++ [text] }

/-- Puts a text in at an offset. -/
def insertAt (d : Draft) (offset : Nat) (side : Side) (text : String) :
    Except EditFault Draft :=
  match d.check ⟨offset, offset⟩ with
  | .error e => .error e
  | .ok () => .ok { d with insertions := d.insertions ++ [⟨offset, side, text⟩] }

/-- Adds a patch in front of those that start later. -/
def addPatch (o : Patch) : List Patch → List Patch
  | [] => [o]
  | p :: ps => if p.range.start < o.range.start then p :: addPatch o ps else o :: p :: ps

/-- Puts a text in place of a range. Earlier patches within the range give way; one that
reaches into it from outside is an error. -/
def replaceRange (d : Draft) (range : Span) (text : String) : Except EditFault Draft :=
  match d.check range with
  | .error e => .error e
  | .ok () =>
    if range.start = range.stop then .error (.emptyRange range.start)
    else
      match d.patches.find? fun o => !(o.range.isDisjoint range || o.range.isWithin range) with
      | some other => .error (.overlap range other.range)
      | none =>
        let kept := d.patches.filter fun o => !o.range.isWithin range
        .ok { d with patches := addPatch ⟨range, text⟩ kept }

end Draft

end Islands
